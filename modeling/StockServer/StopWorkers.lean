import Mathlib.Data.Fintype.Fin
import StockServer.Shutdown

set_option relaxedAutoImplicit false
set_option autoImplicit false

/-!
# Poison pills

The worker pool from its creation to the last join, for any number of workers.  The pills that stop
the workers go through the same queue as the connections.  That no worker stops while a connection
is queued, that no worker takes two pills and that none is left over follows from the order of the
queue, the number of pills and the exit of the worker loop, for every interleaving.

## Main definitions

* `WorkerPool`, `workerPool` — the queue with the main thread and the workers, and the machine of
  their actions.
* `acceptedFds`, `takes`, `handles` — the descriptors accepted, taken from the queue and passed to
  `handle_client`, as the trace shows them.
* `PoolInv` — the invariant.

## Main results

* `insert_cases`, `remove_cases` — what an action of a thread in a call of the queue does.
* `PoolInv.step` — every action of every thread keeps the invariant.
* `workers_stopped` — **when all workers have been joined, every connection has been served once
  and every worker has taken one pill**.

## Implementation notes

`handle_client` is one action here: a worker is in it until an input lets it return.  A thread that
is waiting in `P` waits; no signal interrupts it.
-/

namespace StockServer

/-! ## The pool -/

/-- Where the main thread is in `run_server_stub`. -/
inductive PoolMain where
  /-- In `create_workers`. -/
  | creating
  /-- At the test of the accept loop or in `accept`. -/
  | accepting
  /-- In `conn_queue_insert` of a connection. -/
  | inserting (connfd : Int32)
  /-- In `stop_workers`, before poison pill number `i`. -/
  | stopping (i : ℕ)
  /-- In `conn_queue_insert` of poison pill number `i`. -/
  | pushing (i : ℕ)
  /-- In `join_workers`, at worker number `i`. -/
  | joining (i : ℕ)
  /-- `stop_workers` has returned. -/
  | joined
  deriving DecidableEq, Repr

/-- Where a worker is in `worker_main`. -/
inductive PoolWorker where
  /-- In `conn_queue_remove`. -/
  | removing
  /-- In `handle_client`. -/
  | handling (connfd : Int32)
  /-- Returned. -/
  | returned
  deriving DecidableEq, Repr

/-- A pool with room for `n` workers: the queue, with where each thread is in its functions, the
main thread being `none`; the main thread; the number of workers created; and the workers. -/
structure WorkerPool (n : ℕ) where
  threads : QueueThreads (Option (Fin n))
  main : PoolMain
  created : ℕ
  worker : Fin n → PoolWorker

/-- How the accept loop goes on. -/
inductive AcceptLoop where
  /-- `accept` returns a descriptor, or a negative number for an error. -/
  | connfd (fd : Int32)
  /-- `accept` is interrupted, and the flag is not set. -/
  | interrupted
  /-- The flag is set when it is tested. -/
  | requested
  deriving DecidableEq, Repr

/-- One input of the pool. -/
inductive PoolInput (n : ℕ) where
  /-- The main thread acts; `createFails` is for `pthread_create`. -/
  | main (loop : AcceptLoop) (createFails : Bool)
  /-- A worker acts; `returns` lets `handle_client` return. -/
  | worker (w : Fin n) (returns : Bool)

/-- What a step shows. -/
inductive PoolEvent (n : ℕ) where
  /-- A connection has been accepted. -/
  | accepted (connfd : Int32)
  /-- A thread has acted on the queue. -/
  | queue (thread : Option (Fin n)) (event : QueueEvent)
  /-- `handle_client` has been called. -/
  | handled (w : Fin n) (connfd : Int32)
  deriving DecidableEq, Repr

variable {n : ℕ}

/-- One action of a thread in a call of the queue, or its entry to the call. -/
def WorkerPool.act (s : WorkerPool n) (thread : Option (Fin n)) (call : QueueCall) :
    WorkerPool n × List (PoolEvent n) :=
  let next := threadStep s.threads (thread, call)
  ({ s with threads := next.1 }, next.2.map (.queue thread))

/-- One action of the main thread: of `create_workers`, the accept loop, `stop_workers` or
`join_workers`. -/
def poolMainStep (s : WorkerPool n) (loop : AcceptLoop) (createFails : Bool) :
    WorkerPool n × List (PoolEvent n) :=
  match s.main with
  | .creating =>
    if s.created = n then ({ s with main := .accepting }, [])
    else if createFails then ({ s with main := .stopping 0 }, [])
    else ({ s with created := s.created + 1 }, [])
  | .accepting =>
    match loop with
    | .requested => ({ s with main := .stopping 0 }, [])
    | .interrupted => (s, [])
    | .connfd fd =>
      if fd < 0 then ({ s with main := .stopping 0 }, [])
      else ({ s with main := .inserting fd }, [.accepted fd])
  | .inserting fd =>
    let next := s.act none (.insert fd)
    if next.1.threads.pc none = .out then ({ next.1 with main := .accepting }, next.2) else next
  | .stopping i =>
    ({ s with main := if i < s.created then .pushing i else .joining 0 }, [])
  | .pushing i =>
    let next := s.act none (.insert stockQueueStop)
    if next.1.threads.pc none = .out then ({ next.1 with main := .stopping (i + 1) }, next.2)
    else next
  | .joining i =>
    if h : i < n then
      if i < s.created then
        if s.worker ⟨i, h⟩ = .returned then ({ s with main := .joining (i + 1) }, []) else (s, [])
      else ({ s with main := .joined }, [])
    else ({ s with main := .joined }, [])
  | .joined => (s, [])

/-- One action of a worker that has been created: of `conn_queue_remove`, after which it returns or
calls `handle_client`, or the return of `handle_client`. -/
def poolWorkerStep (s : WorkerPool n) (w : Fin n) (returns : Bool) :
    WorkerPool n × List (PoolEvent n) :=
  if w.val < s.created then
    match s.worker w with
    | .removing =>
      let next := s.act (some w) .remove
      match s.threads.pc (some w) with
      | .removePost connfd =>
        if connfd = stockQueueStop then
          ({ next.1 with worker := Function.update s.worker w .returned }, next.2)
        else
          ({ next.1 with worker := Function.update s.worker w (.handling connfd) },
            next.2 ++ [.handled w connfd])
      | _ => next
    | .handling _ =>
      if returns then ({ s with worker := Function.update s.worker w .removing }, []) else (s, [])
    | .returned => (s, [])
  else (s, [])

/-- One step of the pool. -/
def poolStep (s : WorkerPool n) : PoolInput n → WorkerPool n × List (PoolEvent n)
  | .main loop createFails => poolMainStep s loop createFails
  | .worker w returns => poolWorkerStep s w returns

/-- The pool as a machine. -/
def workerPool (n : ℕ) : Machine (WorkerPool n) (PoolInput n) (PoolEvent n) := ⟨poolStep⟩

/-- The pool before `create_workers`. -/
def poolStart (n : ℕ) (fds : ℕ → Int32) : WorkerPool n where
  threads := queueStart _ fds
  main := .creating
  created := 0
  worker _ := .removing

/-! ## What a trace shows -/

/-- The descriptors that `accept` has returned. -/
def acceptedFds (trace : List (PoolEvent n)) : List Int32 :=
  trace.filterMap fun
    | .accepted fd => some fd
    | _ => none

/-- The actions on the queue. -/
def queueTrace (trace : List (PoolEvent n)) : List QueueEvent :=
  trace.filterMap fun
    | .queue _ event => some event
    | _ => none

/-- The descriptors taken, each with the worker that has taken it. -/
def takes (trace : List (PoolEvent n)) : List (Fin n × Int32) :=
  trace.filterMap fun
    | .queue (some w) (.taken fd) => some (w, fd)
    | _ => none

/-- The descriptors passed to `handle_client`, each with the worker. -/
def handles (trace : List (PoolEvent n)) : List (Fin n × Int32) :=
  trace.filterMap fun
    | .handled w fd => some (w, fd)
    | _ => none

/-- The descriptors of one worker. -/
def ofWorker (w : Fin n) (pairs : List (Fin n × Int32)) : List Int32 :=
  (pairs.filter (·.1 = w)).map Prod.snd

@[simp] theorem acceptedFds_append (t₁ t₂ : List (PoolEvent n)) :
    acceptedFds (t₁ ++ t₂) = acceptedFds t₁ ++ acceptedFds t₂ := List.filterMap_append

@[simp] theorem queueTrace_append (t₁ t₂ : List (PoolEvent n)) :
    queueTrace (t₁ ++ t₂) = queueTrace t₁ ++ queueTrace t₂ := List.filterMap_append

@[simp] theorem takes_append (t₁ t₂ : List (PoolEvent n)) :
    takes (t₁ ++ t₂) = takes t₁ ++ takes t₂ := List.filterMap_append

@[simp] theorem handles_append (t₁ t₂ : List (PoolEvent n)) :
    handles (t₁ ++ t₂) = handles t₁ ++ handles t₂ := List.filterMap_append

@[simp] theorem ofWorker_append (w : Fin n) (p₁ p₂ : List (Fin n × Int32)) :
    ofWorker w (p₁ ++ p₂) = ofWorker w p₁ ++ ofWorker w p₂ := by
  rw [ofWorker, List.filter_append, List.map_append]
  rfl

/-- The descriptors of all workers are those of each. -/
theorem sum_count_ofWorker (fd : Int32) (pairs : List (Fin n × Int32)) :
    ∑ w, (ofWorker w pairs).count fd = (pairs.map Prod.snd).count fd := by
  induction pairs with
  | nil => simp [ofWorker]
  | cons p pairs ih =>
    have hcons : ∀ w, (ofWorker w (p :: pairs)).count fd =
        (if p.1 = w then (if p.2 = fd then 1 else 0) else 0) + (ofWorker w pairs).count fd := by
      intro w
      by_cases hw : p.1 = w
      · simp [ofWorker, hw, List.count_cons, Nat.add_comm]
      · simp [ofWorker, hw]
    rw [List.map_cons, List.count_cons, ← ih, Finset.sum_congr rfl fun w _ => hcons w,
      Finset.sum_add_distrib, Finset.sum_ite_eq]
    simp [Nat.add_comm]

/-- Actions of one thread on the queue show nothing else. -/
theorem trace_queue (thread : Option (Fin n)) (events : List QueueEvent) :
    let shown : List (PoolEvent n) := events.map (.queue thread)
    acceptedFds shown = [] ∧ queueTrace shown = events ∧ handles shown = [] ∧
      takes shown = thread.elim [] fun w => (takenFds events).map (w, ·) := by
  induction events with
  | nil => cases thread <;> simp [acceptedFds, queueTrace, handles, takes, takenFds]
  | cons event events ih =>
    obtain ⟨h₁, h₂, h₃, h₄⟩ := ih
    simp only [acceptedFds, queueTrace, handles, takes, takenFds] at h₁ h₂ h₃ h₄ ⊢
    refine ⟨by simp [h₁], by simp [h₂], by simp [h₃], ?_⟩
    rw [List.map_cons, List.filterMap_cons, h₄]
    cases thread <;> cases event <;> simp

/-! ## Calls of the queue -/

/-- The thread is in `conn_queue_insert` of a descriptor, or in no function of the queue. -/
def QueuePc.Inserts (fd : Int32) : QueuePc → Prop
  | .out | .insertUnlock | .insertPost => True
  | .insertSlots g | .insertMutex g | .insertStore g | .insertAdvance g => g = fd
  | .removeItems | .removeMutex | .removeLoad | .removeAdvance _ | .removeUnlock _
  | .removePost _ => False

/-- The thread is in `conn_queue_remove`, or in no function of the queue. -/
def QueuePc.Removes : QueuePc → Prop
  | .out | .removeItems | .removeMutex | .removeLoad | .removeAdvance _ | .removeUnlock _
  | .removePost _ => True
  | .insertSlots _ | .insertMutex _ | .insertStore _ | .insertAdvance _ | .insertUnlock
  | .insertPost => False

/-- What `conn_queue_insert` of a descriptor has still to store. -/
def QueuePc.toStore (fd : Int32) (pc : QueuePc) : List Int32 := if pc.owesItem = 0 then [fd] else []

/-- The descriptor that `conn_queue_remove` has taken and not returned yet. -/
def QueuePc.taking : QueuePc → List Int32
  | .removeUnlock fd | .removePost fd => [fd]
  | _ => []

section Calls

variable {τ : Type} [DecidableEq τ] {s : QueueThreads τ} {t : τ}

/-- An action of a thread moves no other thread. -/
theorem pc_threadStep {v : τ} (h : v ≠ t) (call : QueueCall) :
    (threadStep s (t, call)).1.pc v = s.pc v := by
  unfold threadStep
  split_ifs
  · exact Function.update_of_ne h ..
  · dsimp only
    split
    · rfl
    · exact Function.update_of_ne h ..

/-- **What an action of `conn_queue_insert` does**: it goes on, and may store the descriptor, or it
is the last. -/
theorem insert_cases {fd : Int32} (h : (s.pc t).Inserts fd) :
    let next := threadStep s (t, .insert fd)
    (next.1.pc t).Inserts fd ∧ takenFds next.2 = [] ∧
      (next.1.pc t ≠ .out →
        storedFds next.2 ++ (next.1.pc t).toStore fd = (s.pc t).toStore fd) ∧
      (next.1.pc t = .out → storedFds next.2 = [] ∧ (s.pc t).toStore fd = []) := by
  unfold threadStep
  cases hpc : s.pc t <;> rw [hpc] at h
  case out =>
    simp [QueueCall.entry, QueuePc.Inserts, QueuePc.toStore, QueuePc.owesItem, takenFds, storedFds]
  case insertSlots | insertMutex =>
    obtain rfl := h
    simp only [reduceCtorEq, ↓reduceIte, queueStep]
    split_ifs <;>
      simp [hpc, QueuePc.Inserts, QueuePc.toStore, QueuePc.owesItem, takenFds, storedFds]
  case insertStore | insertAdvance =>
    obtain rfl := h
    simp [queueStep, QueuePc.Inserts, QueuePc.toStore, QueuePc.owesItem, takenFds, storedFds]
  case insertUnlock | insertPost =>
    simp [queueStep, QueuePc.Inserts, QueuePc.toStore, QueuePc.owesItem, takenFds, storedFds]
  all_goals exact h.elim

/-- **What an action of `conn_queue_remove` does**: the last returns what has been taken, and the
others keep it, or take a descriptor. -/
theorem remove_cases (h : (s.pc t).Removes) :
    let next := threadStep s (t, .remove)
    storedFds next.2 = [] ∧ (next.1.pc t).Removes ∧
      ((∃ fd, s.pc t = .removePost fd) → next.1.pc t = .out ∧ takenFds next.2 = []) ∧
      ((∀ fd, s.pc t ≠ .removePost fd) →
        (next.1.pc t).taking = (s.pc t).taking ++ takenFds next.2) := by
  unfold threadStep
  cases hpc : s.pc t <;> rw [hpc] at h
  case out => simp [QueueCall.entry, QueuePc.Removes, QueuePc.taking, takenFds, storedFds]
  case removeItems | removeMutex =>
    simp only [reduceCtorEq, ↓reduceIte, queueStep]
    split_ifs <;> simp [hpc, QueuePc.Removes, QueuePc.taking, takenFds, storedFds]
  case removeLoad | removeAdvance | removeUnlock | removePost =>
    simp [queueStep, QueuePc.Removes, QueuePc.taking, takenFds, storedFds]
  all_goals exact h.elim

end Calls

/-! ## The invariant -/

/-- What the main thread inserts. -/
def PoolMain.call : PoolMain → Option Int32
  | .inserting fd => some fd
  | .pushing _ => some stockQueueStop
  | _ => none

/-- Where the main thread is in the queue. -/
def PoolMain.Calling (pc : QueuePc) (main : PoolMain) : Prop :=
  match main.call with
  | some fd => pc.Inserts fd
  | none => pc = .out

/-- What the main thread has still to store before it goes on. -/
def PoolMain.toStore (pc : QueuePc) (main : PoolMain) : List Int32 :=
  main.call.elim [] pc.toStore

/-- The number of pills stored when the main thread goes on. -/
def PoolMain.pills (created : ℕ) : PoolMain → ℕ
  | .stopping i => i
  | .pushing i => i + 1
  | .joining _ | .joined => created
  | .creating | .accepting | .inserting _ => 0

/-- The workers that have been joined have returned. -/
def PoolMain.Passed (created : ℕ) (worker : Fin n → PoolWorker) : PoolMain → Prop
  | .joining i => ∀ w, w.val < i → worker w = .returned
  | .joined => ∀ w, w.val < created → worker w = .returned
  | _ => True

/-- The accept loop has not been left. -/
def PoolMain.isAccepting : PoolMain → Bool
  | .accepting | .inserting _ => true
  | _ => false

/-- **The invariant of the main thread**: what has been stored, and is still to be, are the
connections in the order they were accepted and then the pills. -/
structure MainInv (s : WorkerPool n) (trace : List (PoolEvent n)) : Prop where
  stored : storedFds (queueTrace trace) ++ s.main.toStore (s.threads.pc none) =
    acceptedFds trace ++ List.replicate (s.main.pills s.created) stockQueueStop
  calling : s.main.Calling (s.threads.pc none)
  nonneg : ∀ fd ∈ acceptedFds trace, 0 ≤ fd
  full : s.created = n ∨ acceptedFds trace = [] ∧ s.main.isAccepting = false
  created_le : s.created ≤ n
  pills_le : s.main.pills s.created ≤ s.created
  passed : s.main.Passed s.created s.worker

/-- What a worker has taken and not passed to `handle_client`: a descriptor it is about to return
from `conn_queue_remove`, or the pill. -/
def PoolWorker.pending (pc : QueuePc) : PoolWorker → List Int32
  | .removing => pc.taking
  | .handling _ => []
  | .returned => [stockQueueStop]

/-- **The invariant of a worker**: what it has taken has been passed to `handle_client` in that
order, but for the last, and never was a pill. -/
structure WorkerInv (s : WorkerPool n) (trace : List (PoolEvent n)) (w : Fin n) : Prop where
  taken : ofWorker w (takes trace) =
    ofWorker w (handles trace) ++ (s.worker w).pending (s.threads.pc (some w))
  proper : stockQueueStop ∉ ofWorker w (handles trace)
  removing : s.worker w = .removing → (s.threads.pc (some w)).Removes
  outside : s.worker w ≠ .removing → s.threads.pc (some w) = .out
  fresh : s.created ≤ w.val → s.worker w = .removing ∧ s.threads.pc (some w) = .out ∧
    ofWorker w (handles trace) = []

/-- The invariant of the pool. -/
structure PoolInv (s : WorkerPool n) (trace : List (PoolEvent n)) : Prop where
  queue : QueueInv s.threads (queueTrace trace)
  taken : (takes trace).map Prod.snd = takenFds (queueTrace trace)
  main : MainInv s trace
  worker : ∀ w, WorkerInv s trace w

variable {s s' : WorkerPool n} {trace shown : List (PoolEvent n)} {w : Fin n}

/-- A step of other threads keeps the invariant of a worker. -/
theorem WorkerInv.frame (h : WorkerInv s trace w) (hworker : s'.worker w = s.worker w)
    (hpc : s'.threads.pc (some w) = s.threads.pc (some w)) (hcreated : s.created ≤ s'.created)
    (htakes : ofWorker w (takes shown) = []) (hhandles : ofWorker w (handles shown) = []) :
    WorkerInv s' (trace ++ shown) w := by
  have hsame : ofWorker w (handles (trace ++ shown)) = ofWorker w (handles trace) := by
    simp [hhandles]
  refine ⟨?_, ?_, ?_, ?_, fun hw => ?_⟩
  · rw [hsame, hworker, hpc, ← h.taken]
    simp [htakes]
  · rw [hsame]
    exact h.proper
  · rw [hworker, hpc]
    exact h.removing
  · rw [hworker, hpc]
    exact h.outside
  · rw [hworker, hpc, hsame]
    exact h.fresh (hcreated.trans hw)

/-- A step of a worker keeps the invariant of the main thread. -/
theorem MainInv.frame (h : MainInv s trace) (hmain : s'.main = s.main)
    (hpc : s'.threads.pc none = s.threads.pc none) (hcreated : s'.created = s.created)
    (hreturned : ∀ w, s.worker w = .returned → s'.worker w = .returned)
    (haccepted : acceptedFds shown = []) (hstored : storedFds (queueTrace shown) = []) :
    MainInv s' (trace ++ shown) := by
  have hsame : acceptedFds (trace ++ shown) = acceptedFds trace := by simp [haccepted]
  refine ⟨?_, ?_, ?_, ?_, ?_, ?_, ?_⟩
  · rw [hmain, hpc, hcreated, hsame, ← h.stored]
    simp [hstored]
  · rw [hmain, hpc]
    exact h.calling
  · rw [hsame]
    exact h.nonneg
  · rw [hmain, hcreated, hsame]
    exact h.full
  · rw [hcreated]
    exact h.created_le
  · rw [hmain, hcreated]
    exact h.pills_le
  · have hpassed := h.passed
    rw [hmain, hcreated]
    cases hm : s.main <;> rw [hm] at hpassed
    case joining i => exact fun w hw => hreturned w (hpassed w hw)
    case joined => exact fun w hw => hreturned w (hpassed w hw)
    all_goals trivial

/-! ## The main thread -/

/-- A step of the main thread outside the queue keeps the invariant if it keeps its own. -/
theorem PoolInv.of_main (h : PoolInv s trace) (hthreads : s'.threads = s.threads)
    (hworker : s'.worker = s.worker) (hcreated : s.created ≤ s'.created)
    (hqueue : queueTrace shown = []) (htakes : takes shown = []) (hhandles : handles shown = [])
    (hmain : MainInv s' (trace ++ shown)) : PoolInv s' (trace ++ shown) := by
  refine ⟨?_, ?_, hmain, fun w => (h.worker w).frame ?_ ?_ hcreated ?_ ?_⟩
  · rw [hthreads, queueTrace_append, hqueue, List.append_nil]
    exact h.queue
  · rw [takes_append, htakes, queueTrace_append, hqueue, List.append_nil, List.append_nil]
    exact h.taken
  · rw [hworker]
  · rw [hthreads]
  · rw [htakes]; rfl
  · rw [hhandles]; rfl

/-- An action of an insertion keeps the invariant if that of the main thread is kept. -/
theorem PoolInv.of_insert (h : PoolInv s trace) {fd : Int32} (hpc : (s.threads.pc none).Inserts fd)
    (hthreads : s'.threads = (threadStep s.threads (none, .insert fd)).1)
    (hworker : s'.worker = s.worker) (hcreated : s'.created = s.created)
    (hmain : MainInv s' (trace ++ (s.act none (.insert fd)).2)) :
    PoolInv s' (trace ++ (s.act none (.insert fd)).2) := by
  obtain ⟨-, htaken, -⟩ := insert_cases hpc
  obtain ⟨-, hqueue, hhandles, htakes⟩ := trace_queue (none : Option (Fin n))
    (threadStep s.threads (none, .insert fd)).2
  refine ⟨?_, ?_, hmain, fun w => (h.worker w).frame ?_ ?_ hcreated.ge ?_ ?_⟩
  · rw [hthreads, queueTrace_append, WorkerPool.act, hqueue]
    exact h.queue.step _
  · rw [takes_append, queueTrace_append, WorkerPool.act, hqueue, htakes, takenFds_append, htaken,
      ← h.taken]
    simp
  · rw [hworker]
  · rw [hthreads]
    exact pc_threadStep (by simp) _
  · rw [WorkerPool.act, htakes]; rfl
  · rw [WorkerPool.act, hhandles]; rfl

/-- **An insertion keeps the invariant of the main thread**, and so does what follows it. -/
theorem MainInv.insert (h : MainInv s trace) {fd : Int32} (hcall : s.main.call = some fd)
    (after : PoolMain) (hafter : after.call = none)
    (hpills : after.pills s.created = s.main.pills s.created)
    (haccepting : after.isAccepting = s.main.isAccepting)
    (hpassed : after.Passed s.created s.worker) :
    let next := s.act none (.insert fd)
    (s.threads.pc none).Inserts fd ∧
      (next.1.threads.pc none ≠ .out → MainInv next.1 (trace ++ next.2)) ∧
      (next.1.threads.pc none = .out →
        MainInv { next.1 with main := after } (trace ++ next.2)) := by
  intro next
  have hpc : (s.threads.pc none).Inserts fd := by
    have hcalling := h.calling
    rwa [PoolMain.Calling, hcall] at hcalling
  obtain ⟨hnext, -, hon, hlast⟩ := insert_cases hpc
  obtain ⟨haccepted, hqueue, -, -⟩ := trace_queue (none : Option (Fin n))
    (threadStep s.threads (none, .insert fd)).2
  have haccepted : acceptedFds (trace ++ next.2) = acceptedFds trace := by
    rw [acceptedFds_append]
    exact (congrArg _ haccepted).trans (List.append_nil _)
  have hqueue : storedFds (queueTrace (trace ++ next.2)) = storedFds (queueTrace trace) ++
      storedFds (threadStep s.threads (none, .insert fd)).2 := by
    rw [queueTrace_append, storedFds_append]
    exact congrArg (fun events => _ ++ storedFds events) hqueue
  have hstored := h.stored
  rw [PoolMain.toStore, hcall] at hstored
  refine ⟨hpc, fun hin => ?_, fun hout => ?_⟩
  · refine ⟨?_, ?_, haccepted ▸ h.nonneg, haccepted ▸ h.full, h.created_le, h.pills_le, h.passed⟩
    · show storedFds _ ++ s.main.toStore _ = _ ++ List.replicate (s.main.pills s.created) _
      rw [haccepted, hqueue, PoolMain.toStore, hcall, ← hstored, List.append_assoc]
      exact congrArg _ (hon hin)
    · show s.main.Calling _
      rw [PoolMain.Calling, hcall]
      exact hnext
  · obtain ⟨hnone, hdone⟩ := hlast hout
    refine ⟨?_, ?_, haccepted ▸ h.nonneg, ?_, h.created_le, hpills ▸ h.pills_le, hpassed⟩
    · show storedFds _ ++ after.toStore _ = _ ++ List.replicate (after.pills s.created) _
      rw [haccepted, hqueue, PoolMain.toStore, hafter, hpills, ← hstored, hnone]
      simp [hdone]
    · show after.Calling _
      rw [PoolMain.Calling, hafter]
      exact hout
    · show s.created = n ∨ _ ∧ after.isAccepting = false
      rw [haccepted, haccepting]
      exact h.full

/-- A step of the main thread outside the queue, in which nothing is accepted. -/
theorem PoolInv.goto (h : PoolInv s trace) {main : PoolMain} {created : ℕ}
    (hbefore : s.main.call = none) (hafter : main.call = none)
    (hpills : main.pills created = s.main.pills s.created)
    (hfull : created = n ∨ acceptedFds trace = [] ∧ main.isAccepting = false)
    (hcreated : s.created ≤ created) (hle : created ≤ n)
    (hpassed : main.Passed created s.worker) :
    PoolInv { s with main := main, created := created } (trace ++ []) := by
  have hcalling := h.main.calling
  have hstored := h.main.stored
  rw [PoolMain.Calling, hbefore] at hcalling
  rw [PoolMain.toStore, hbefore] at hstored
  refine h.of_main rfl rfl hcreated rfl rfl rfl ?_
  rw [List.append_nil]
  refine ⟨?_, ?_, h.main.nonneg, hfull, hle, ?_, hpassed⟩
  · show _ ++ main.toStore _ = _ ++ List.replicate (main.pills created) _
    rw [PoolMain.toStore, hafter, hpills]
    exact hstored
  · show main.Calling _
    rw [PoolMain.Calling, hafter]
    exact hcalling
  · show main.pills created ≤ created
    rw [hpills]
    exact h.main.pills_le.trans hcreated

/-- The main thread enters `conn_queue_insert`. -/
theorem PoolInv.enter (h : PoolInv s trace) {main : PoolMain} {fd : Int32}
    (hbefore : s.main.call = none) (hafter : main.call = some fd)
    (hshown : queueTrace shown = [] ∧ takes shown = [] ∧ handles shown = [])
    (hstored : acceptedFds shown ++ List.replicate (main.pills s.created) stockQueueStop =
      List.replicate (s.main.pills s.created) stockQueueStop ++ [fd])
    (hnonneg : ∀ fd ∈ acceptedFds shown, 0 ≤ fd)
    (hfull : s.created = n ∨ acceptedFds (trace ++ shown) = [] ∧ main.isAccepting = false)
    (hpills : main.pills s.created ≤ s.created) (hpassed : main.Passed s.created s.worker) :
    PoolInv { s with main := main } (trace ++ shown) := by
  obtain ⟨hqueue, htakes, hhandles⟩ := hshown
  have hcalling := h.main.calling
  have hbalance := h.main.stored
  rw [PoolMain.Calling, hbefore] at hcalling
  have hout : s.threads.pc none = .out := hcalling
  rw [PoolMain.toStore, hbefore, Option.elim, List.append_nil] at hbalance
  refine h.of_main rfl rfl le_rfl hqueue htakes hhandles ?_
  refine ⟨?_, ?_, ?_, hfull, h.main.created_le, hpills, hpassed⟩
  · show _ ++ main.toStore _ = _ ++ List.replicate (main.pills s.created) _
    rw [PoolMain.toStore, hafter, hout, queueTrace_append, hqueue, List.append_nil, hbalance,
      acceptedFds_append, List.append_assoc, List.append_assoc, hstored]
    rfl
  · show main.Calling _
    rw [PoolMain.Calling, hafter, hout]
    trivial
  · intro fd hfd
    rw [acceptedFds_append] at hfd
    exact (List.mem_append.mp hfd).elim (h.main.nonneg fd) (hnonneg fd)

/-- **The main thread keeps the invariant.** -/
theorem PoolInv.mainStep (h : PoolInv s trace) (loop : AcceptLoop) (createFails : Bool) :
    PoolInv (poolMainStep s loop createFails).1
      (trace ++ (poolMainStep s loop createFails).2) := by
  have hfull := h.main.full
  have hle := h.main.created_le
  have hpills := h.main.pills_le
  have hpassed := h.main.passed
  unfold poolMainStep
  cases hmain : s.main <;> rw [hmain] at hfull hpills hpassed <;> dsimp only
  case creating =>
    split_ifs with hall hfails
    · exact h.goto (by rw [hmain]; rfl) rfl (by rw [hmain]; rfl) (Or.inl hall) le_rfl hle trivial
    · exact h.goto (by rw [hmain]; rfl) rfl (by rw [hmain]; rfl)
        (Or.inr ⟨(hfull.resolve_left hall).1, rfl⟩) le_rfl hle trivial
    · refine h.goto (by rw [hmain]; rfl) rfl (by rw [hmain]; rfl) (Or.inr ?_) (by omega)
        (by omega) trivial
      exact hfull.resolve_left hall
  case accepting =>
    have hall : s.created = n := hfull.resolve_right fun hbad => by cases hbad.2
    cases loop with
    | requested =>
      exact h.goto (by rw [hmain]; rfl) rfl (by rw [hmain]; rfl) (Or.inl hall) le_rfl hle trivial
    | interrupted =>
      dsimp only
      rwa [List.append_nil]
    | connfd fd =>
      dsimp only
      split_ifs with hneg
      · exact h.goto (by rw [hmain]; rfl) rfl (by rw [hmain]; rfl) (Or.inl hall) le_rfl hle
          trivial
      · refine h.enter (by rw [hmain]; rfl) rfl ⟨rfl, rfl, rfl⟩ (by rw [hmain]; rfl) ?_
          (Or.inl hall) (Nat.zero_le _) trivial
        intro g hg
        obtain rfl := List.mem_singleton.mp hg
        exact Int32.not_lt.mp hneg
  case inserting fd =>
    obtain ⟨hpc, hon, hlast⟩ := h.main.insert (by rw [hmain]; rfl) .accepting rfl
      (by rw [hmain]; rfl) (by rw [hmain]; rfl) trivial
    split_ifs with hout
    · exact h.of_insert hpc rfl rfl rfl (hlast hout)
    · exact h.of_insert hpc rfl rfl rfl (hon hout)
  case stopping i =>
    by_cases hi : i < s.created
    · rw [if_pos hi]
      refine h.enter (by rw [hmain]; rfl) rfl ⟨rfl, rfl, rfl⟩ ?_ (by simp [acceptedFds]) ?_ hi
        trivial
      · rw [hmain]
        exact List.replicate_succ'
      · rw [List.append_nil]
        exact hfull
    · rw [if_neg hi]
      have hlast : i = s.created := le_antisymm hpills (Nat.le_of_not_lt hi)
      refine h.goto (by rw [hmain]; rfl) rfl ?_ hfull le_rfl hle ?_
      · rw [hmain]
        exact hlast.symm
      · exact fun w hw => absurd hw (Nat.not_lt_zero _)
  case pushing i =>
    obtain ⟨hpc, hon, hlast⟩ := h.main.insert (by rw [hmain]; rfl) (.stopping (i + 1)) rfl
      (by rw [hmain]; rfl) (by rw [hmain]; rfl) trivial
    split_ifs with hout
    · exact h.of_insert hpc rfl rfl rfl (hlast hout)
    · exact h.of_insert hpc rfl rfl rfl (hon hout)
  case joining i =>
    have hstay : PoolInv s (trace ++ []) := by rwa [List.append_nil]
    have hpast : (∀ w : Fin n, w.val < s.created → w.val < i) →
        PoolInv { s with main := .joined } (trace ++ []) := by
      intro hi
      exact h.goto (by rw [hmain]; rfl) rfl (by rw [hmain]; rfl) hfull le_rfl hle
        fun w hw => hpassed w (hi w hw)
    split_ifs with hi hcreated hreturned
    · refine h.goto (by rw [hmain]; rfl) rfl (by rw [hmain]; rfl) hfull le_rfl hle fun w hw => ?_
      rcases Nat.lt_succ_iff_lt_or_eq.mp hw with hw | hw
      · exact hpassed w hw
      · obtain rfl : w = ⟨i, hi⟩ := Fin.ext hw
        exact hreturned
    · exact hstay
    · exact hpast fun w hw => by omega
    · exact hpast fun w _ => by omega
  case joined =>
    rwa [List.append_nil]

/-! ## The workers -/

/-- What the events of one worker show of another. -/
theorem ofWorker_of_ne {v : Fin n} (h : v ≠ w) (fds : List Int32) :
    ofWorker v (fds.map (w, ·)) = [] := by
  have hnone : (fds.map fun fd => (w, fd)).filter (·.1 = v) = [] := by
    rw [List.filter_eq_nil_iff]
    intro p hp
    obtain ⟨fd, -, rfl⟩ := List.mem_map.mp hp
    simpa using Ne.symm h
  rw [ofWorker, hnone]
  rfl

/-- What the events of one worker show of it. -/
theorem ofWorker_self (w : Fin n) (fds : List Int32) : ofWorker w (fds.map (w, ·)) = fds := by
  have hall : (fds.map fun fd => (w, fd)).filter (·.1 = w) = fds.map fun fd => (w, fd) := by
    rw [List.filter_eq_self]
    intro p hp
    obtain ⟨fd, -, rfl⟩ := List.mem_map.mp hp
    simp
  rw [ofWorker, hall, List.map_map]
  exact List.map_id _

/-- **An action of `conn_queue_remove` keeps the invariant**, whatever the worker does next, if its
own is kept. -/
theorem PoolInv.of_remove (h : PoolInv s trace) (hw : s.worker w = .removing)
    {after : PoolWorker} {handled : List Int32}
    (hworker : WorkerInv { (s.act (some w) .remove).1 with
        worker := Function.update s.worker w after }
      (trace ++ ((s.act (some w) .remove).2 ++ handled.map (.handled w))) w) :
    PoolInv { (s.act (some w) .remove).1 with worker := Function.update s.worker w after }
      (trace ++ ((s.act (some w) .remove).2 ++ handled.map (.handled w))) := by
  obtain ⟨hstored, -⟩ := remove_cases ((h.worker w).removing hw)
  obtain ⟨haccepted, hqueue, hhandles, htakes⟩ := trace_queue (some w)
    (threadStep s.threads (some w, .remove)).2
  have hafter : acceptedFds (handled.map (PoolEvent.handled w)) = [] ∧
      queueTrace (handled.map (PoolEvent.handled w)) = [] ∧
      takes (handled.map (PoolEvent.handled w)) = [] ∧
      handles (handled.map (PoolEvent.handled w)) = handled.map (w, ·) := by
    simp [acceptedFds, queueTrace, takes, handles, List.filterMap_map]
  obtain ⟨haccepted', hqueue', htakes', hhandles'⟩ := hafter
  simp only [WorkerPool.act] at hworker ⊢
  refine ⟨?_, ?_, ?_, fun v => ?_⟩
  · simp only [queueTrace_append, hqueue, hqueue', List.append_nil]
    exact h.queue.step _
  · simp only [takes_append, queueTrace_append, hqueue, hqueue', htakes, htakes', takenFds_append,
      List.append_nil, List.map_append, h.taken, Option.elim, List.map_map, Function.comp_def,
      List.map_id']
  · refine h.main.frame rfl (pc_threadStep (by simp) _) rfl (fun v hv => ?_) ?_ ?_
    · have hne : v ≠ w := by
        rintro rfl
        rw [hw] at hv
        cases hv
      exact (Function.update_of_ne hne ..).trans hv
    · simp [haccepted, haccepted']
    · simp [hqueue, hqueue', hstored]
  · by_cases hv : v = w
    · subst hv
      exact hworker
    · refine (h.worker v).frame (Function.update_of_ne hv ..) (pc_threadStep (by simpa using hv) _)
        le_rfl ?_ ?_
      · simp [htakes, htakes', ofWorker_of_ne hv]
      · rw [handles_append, hhandles, hhandles', List.nil_append]
        exact ofWorker_of_ne hv handled

/-- A worker keeps its invariant in `conn_queue_remove` and after it, if what it has taken is what
it passes to `handle_client` and what is pending. -/
theorem WorkerInv.remove (h : WorkerInv s trace w) (hw : w.val < s.created)
    {after : PoolWorker} {handled : List Int32}
    (htaken : (s.worker w).pending (s.threads.pc (some w)) ++
        takenFds (threadStep s.threads (some w, .remove)).2 =
      handled ++ after.pending ((s.act (some w) .remove).1.threads.pc (some w)))
    (hproper : stockQueueStop ∉ handled)
    (hremoving : after = .removing → ((s.act (some w) .remove).1.threads.pc (some w)).Removes)
    (houtside : after ≠ .removing → (s.act (some w) .remove).1.threads.pc (some w) = .out) :
    WorkerInv { (s.act (some w) .remove).1 with worker := Function.update s.worker w after }
      (trace ++ ((s.act (some w) .remove).2 ++ handled.map (.handled w))) w := by
  obtain ⟨-, -, hhandles, htakes⟩ := trace_queue (some w)
    (threadStep s.threads (some w, .remove)).2
  have htakes : ofWorker w (takes (s.act (some w) .remove).2) =
      takenFds (threadStep s.threads (some w, .remove)).2 := by
    rw [WorkerPool.act, htakes]
    exact ofWorker_self w _
  have hhandles : handles (s.act (some w) .remove).2 = [] := hhandles
  have htakes' : takes (handled.map (PoolEvent.handled w)) = [] := by
    simp [takes, List.filterMap_map]
  have hhandles' : ofWorker w (handles (handled.map (PoolEvent.handled w))) = handled := by
    have hpairs : handles (handled.map (PoolEvent.handled w)) = handled.map (w, ·) := by
      simp [handles, List.filterMap_map]
    rw [hpairs, ofWorker_self]
  refine ⟨?_, ?_, ?_, ?_, fun hfresh => absurd hw (Nat.not_lt.mpr hfresh)⟩
  · simp only [takes_append, handles_append, ofWorker_append, htakes, hhandles, htakes', hhandles',
      h.taken, List.append_nil, List.nil_append, List.append_assoc, List.append_cancel_left_eq,
      Function.update_self]
    exact htaken
  · simp only [handles_append, ofWorker_append, hhandles, hhandles', List.nil_append,
      List.mem_append, not_or]
    exact ⟨h.proper, hproper⟩
  · dsimp only
    rw [Function.update_self]
    exact hremoving
  · dsimp only
    rw [Function.update_self]
    exact houtside

/-- **A worker keeps the invariant.** -/
theorem PoolInv.workerStep (h : PoolInv s trace) (w : Fin n) (returns : Bool) :
    PoolInv (poolWorkerStep s w returns).1 (trace ++ (poolWorkerStep s w returns).2) := by
  have hstay : PoolInv s (trace ++ []) := by rwa [List.append_nil]
  unfold poolWorkerStep
  by_cases hcreated : w.val < s.created
  swap
  · rwa [if_neg hcreated]
  rw [if_pos hcreated]
  cases hworker : s.worker w with
  | removing =>
    obtain ⟨-, hremoves, hleave, hkeep⟩ := remove_cases ((h.worker w).removing hworker)
    by_cases hlast : ∃ fd, s.threads.pc (some w) = .removePost fd
    · -- `conn_queue_remove` returns
      obtain ⟨fd, hfd⟩ := hlast
      obtain ⟨hout, htaken⟩ := hleave ⟨fd, hfd⟩
      simp only [hfd]
      by_cases hstop : fd = stockQueueStop
      · have hnext := @PoolInv.of_remove n s trace w h hworker .returned [] <|
          (h.worker w).remove hcreated (by rw [hworker, hfd, htaken, hstop]; rfl) (by simp)
            (by simp) fun _ => hout
        rw [if_pos hstop]
        rwa [List.map_nil, List.append_nil] at hnext
      · have hnext := @PoolInv.of_remove n s trace w h hworker (.handling fd) [fd] <|
          (h.worker w).remove hcreated (by rw [hworker, hfd, htaken]; rfl)
            (by simpa using Ne.symm hstop) (by simp) fun _ => hout
        rw [if_neg hstop]
        exact hnext
    · -- it goes on
      rw [not_exists] at hlast
      have hsame : Function.update s.worker w .removing = s.worker := by
        rw [← hworker, Function.update_eq_self]
      have hnext := @PoolInv.of_remove n s trace w h hworker .removing [] <|
        (h.worker w).remove hcreated (by rw [hworker]; exact (hkeep hlast).symm) (by simp)
          (fun _ => hremoves) (by simp)
      rw [hsame, List.map_nil, List.append_nil] at hnext
      dsimp only
      split
      · exact absurd ‹_› (hlast _)
      · exact hnext
  | handling fd =>
    cases returns with
    | false => exact hstay
    | true =>
      -- `handle_client` returns
      have hout := (h.worker w).outside (by simp [hworker])
      have hreturned : ∀ v, s.worker v = .returned →
          Function.update s.worker w .removing v = .returned := by
        intro v hv
        have hne : v ≠ w := by
          rintro rfl
          rw [hworker] at hv
          cases hv
        exact (Function.update_of_ne hne ..).trans hv
      simp only [↓reduceIte]
      refine ⟨hstay.queue, hstay.taken, h.main.frame rfl rfl rfl hreturned rfl rfl, fun v => ?_⟩
      by_cases hv : v = w
      · subst hv
        refine ⟨?_, hstay.worker v |>.proper, fun _ => ?_, fun hbad => ?_, fun hfresh => ?_⟩
        · have htaken := (hstay.worker v).taken
          rw [hworker] at htaken
          dsimp only
          rw [htaken, Function.update_self, hout]
          rfl
        · dsimp only
          rw [hout]
          trivial
        · exact absurd (Function.update_self ..) hbad
        · exact absurd hcreated (Nat.not_lt.mpr hfresh)
      · exact (h.worker v).frame (Function.update_of_ne hv ..) rfl le_rfl rfl rfl
  | returned => exact hstay

/-! ## The end of the pool -/

/-- The invariant holds before `create_workers`. -/
theorem PoolInv.start (fds : ℕ → Int32) : PoolInv (poolStart n fds) [] where
  queue := .start fds
  taken := rfl
  main := ⟨rfl, rfl, by simp [acceptedFds], Or.inr ⟨rfl, rfl⟩, Nat.zero_le _, le_rfl, trivial⟩
  worker _ := ⟨rfl, by simp [handles, ofWorker], fun _ => trivial, fun _ => rfl,
    fun _ => ⟨rfl, rfl, rfl⟩⟩

/-- **Every action of every thread keeps the invariant.** -/
theorem PoolInv.step (h : PoolInv s trace) (input : PoolInput n) :
    PoolInv (poolStep s input).1 (trace ++ (poolStep s input).2) := by
  cases input with
  | main loop createFails => exact h.mainStep loop createFails
  | worker w returns => exact h.workerStep w returns

/-- The pool has done its work: the descriptors taken, each by one worker, are those accepted, in
their order, and after them one pill for every worker created; `handle_client` has been called for
every connection once; every worker has passed what it has taken to `handle_client`, but for the
one pill that was the last; and the queue is empty. -/
structure Drained (s : WorkerPool n) (trace : List (PoolEvent n)) : Prop where
  taken : (takes trace).map Prod.snd =
    acceptedFds trace ++ List.replicate s.created stockQueueStop
  nonneg : ∀ fd ∈ acceptedFds trace, 0 ≤ fd
  handled : ((handles trace).map Prod.snd).Perm (acceptedFds trace)
  worker : ∀ w, w.val < s.created → s.worker w = .returned ∧
    ofWorker w (takes trace) = ofWorker w (handles trace) ++ [stockQueueStop] ∧
    stockQueueStop ∉ ofWorker w (handles trace)
  others : ∀ w, s.created ≤ w.val → ofWorker w (takes trace) = []
  stored : storedFds (queueTrace trace) = (takes trace).map Prod.snd
  items : s.threads.queue.items = 0
  slots : s.threads.queue.slots = stockQueueSize
  early : s.created < n → acceptedFds trace = []

/-- A connection is no pill. -/
theorem stop_notMem {fds : List Int32} (h : ∀ fd ∈ fds, 0 ≤ fd) : stockQueueStop ∉ fds :=
  fun hmem => absurd (h _ hmem) (by decide)

/-- The worker takes one pill, or none if it has not been created. -/
theorem PoolInv.count_stop (h : PoolInv s trace) (hmain : s.main = .joined) (w : Fin n) :
    (ofWorker w (takes trace)).count stockQueueStop = if w.val < s.created then 1 else 0 := by
  have hw := h.worker w
  rw [hw.taken, List.count_append, List.count_eq_zero.mpr hw.proper]
  have hpassed := h.main.passed
  rw [hmain] at hpassed
  split_ifs with hcreated
  · rw [hpassed w hcreated]
    rfl
  · obtain ⟨hremoving, hout, -⟩ := hw.fresh (Nat.le_of_not_lt hcreated)
    rw [hremoving, hout]
    rfl

/-- When all workers have been joined, no thread is in a function of the queue. -/
theorem PoolInv.pc_eq_out (h : PoolInv s trace) (hmain : s.main = .joined)
    (thread : Option (Fin n)) : s.threads.pc thread = .out := by
  cases thread with
  | none =>
    have hcalling := h.main.calling
    rwa [hmain] at hcalling
  | some w =>
    by_cases hcreated : w.val < s.created
    · have hpassed := h.main.passed
      rw [hmain] at hpassed
      exact (h.worker w).outside (by simp [hpassed w hcreated])
    · exact ((h.worker w).fresh (Nat.le_of_not_lt hcreated)).2.1

/-- **When all workers have been joined, all that has been stored has been taken**: the pills taken
are as many as those stored, and those stored are the last. -/
theorem PoolInv.taken_eq_stored (h : PoolInv s trace) (hn : 0 < n) (hmain : s.main = .joined) :
    takenFds (queueTrace trace) = storedFds (queueTrace trace) ∧ storedFds (queueTrace trace) =
      acceptedFds trace ++ List.replicate s.created stockQueueStop := by
  have hstored : storedFds (queueTrace trace) =
      acceptedFds trace ++ List.replicate s.created stockQueueStop := by
    have hstored := h.main.stored
    rw [hmain] at hstored
    exact (List.append_nil _).symm.trans hstored
  refine ⟨?_, hstored⟩
  have hstop := List.count_eq_zero.mpr (stop_notMem h.main.nonneg)
  have hcount : (takenFds (queueTrace trace)).count stockQueueStop = s.created := by
    rw [← h.taken, ← sum_count_ofWorker, Finset.sum_congr rfl fun w _ => h.count_stop hmain w,
      ← Finset.card_filter, Fin.card_filter_val_lt, min_eq_right h.main.created_le]
  obtain ⟨left, hleft⟩ := h.queue.prefix_taken
  have hnone : left.count stockQueueStop = 0 := by
    have htotal := congrArg (List.count stockQueueStop) (hleft.trans hstored)
    rw [List.count_append, List.count_append, hcount, hstop, List.count_replicate_self] at htotal
    omega
  -- what is left would end with a pill
  rcases List.eq_nil_or_concat left with rfl | ⟨front, last, rfl⟩
  · rw [← hleft, List.append_nil]
  · exfalso
    rw [hstored, List.concat_eq_append, ← List.append_assoc] at hleft
    cases hcreated : s.created with
    | zero =>
      have hfull := h.main.full
      rw [hcreated] at hfull
      obtain ⟨hnil, -⟩ := hfull.resolve_left hn.ne
      rw [hcreated, hnil] at hleft
      simp at hleft
    | succ k =>
      rw [hcreated, List.replicate_succ', ← List.append_assoc] at hleft
      obtain rfl := List.singleton_inj.mp (List.append_inj_right' hleft rfl)
      rw [List.concat_eq_append, List.count_append] at hnone
      simp at hnone

/-- **When all workers have been joined the pool is drained.** -/
theorem PoolInv.drained (h : PoolInv s trace) (hn : 0 < n) (hmain : s.main = .joined) :
    Drained s trace := by
  obtain ⟨htaken, hstored⟩ := h.taken_eq_stored hn hmain
  have hout := h.pc_eq_out hmain
  have hpassed := h.main.passed
  rw [hmain] at hpassed
  have hothers : ∀ w, s.created ≤ w.val → ofWorker w (takes trace) = [] := by
    intro w hw
    obtain ⟨hremoving, hpc, hnone⟩ := (h.worker w).fresh hw
    rw [(h.worker w).taken, hnone, hremoving, hpc]
    rfl
  have hworker : ∀ w, w.val < s.created →
      ofWorker w (takes trace) = ofWorker w (handles trace) ++ [stockQueueStop] := by
    intro w hw
    rw [(h.worker w).taken, hpassed w hw]
    rfl
  refine ⟨h.taken.trans (htaken.trans hstored), h.main.nonneg, ?_,
    fun w hw => ⟨hpassed w hw, hworker w hw, (h.worker w).proper⟩, hothers,
    htaken.symm.trans h.taken.symm, ?_, ?_, fun hearly => ?_⟩
  · -- every connection is taken and handled equally often
    rw [List.perm_iff_count]
    intro fd
    rw [← sum_count_ofWorker]
    by_cases hfd : fd = stockQueueStop
    · rw [hfd, List.count_eq_zero.mpr (stop_notMem h.main.nonneg)]
      exact Finset.sum_eq_zero fun w _ => List.count_eq_zero.mpr (h.worker w).proper
    · have hsame : ∀ w, (ofWorker w (handles trace)).count fd =
          (ofWorker w (takes trace)).count fd := by
        intro w
        by_cases hw : w.val < s.created
        · have hpill : [stockQueueStop].count fd = 0 :=
            List.count_eq_zero.mpr (by simpa using hfd)
          rw [hworker w hw, List.count_append, hpill, Nat.add_zero]
        · have hfresh := (h.worker w).fresh (Nat.le_of_not_lt hw)
          rw [hothers w (Nat.le_of_not_lt hw), hfresh.2.2]
      rw [Finset.sum_congr rfl fun w _ => hsame w, sum_count_ofWorker, h.taken, htaken, hstored,
        List.count_append]
      have hreplicate : (List.replicate s.created stockQueueStop).count fd = 0 :=
        List.count_eq_zero.mpr fun hmem => hfd (List.eq_of_mem_replicate hmem)
      omega
  · have hitems := h.queue.counts.items
    rw [htaken] at hitems
    omega
  · have hslots := h.queue.counts.slots
    simp only [hout, QueuePc.hasSlot, QueuePc.owesSlot, Finset.sum_const_zero, htaken] at hslots
    omega
  · exact (h.main.full.resolve_left hearly.ne).1

/-- **When all workers have been joined, every connection has been served once and every worker has
taken one pill.**  For every number of workers and every run of the pool, whatever `accept` and
`pthread_create` return, whenever `handle_client` returns and in every interleaving: when
`stop_workers` has returned, the pool is drained.

**Proof sketch.** Every worker created has returned, so it has taken one pill.  The descriptors
taken are a front of those stored, which end with that number of pills; so nothing is left. -/
theorem workers_stopped (hn : 0 < n) (fds : ℕ → Int32) (inputs : List (PoolInput n))
    (hjoined : ((workerPool n).run (poolStart n fds) inputs).1.main = .joined) :
    Drained ((workerPool n).run (poolStart n fds) inputs).1
      ((workerPool n).run (poolStart n fds) inputs).2 := by
  have h : PoolInv ((workerPool n).run (poolStart n fds) inputs).1
      ((workerPool n).run (poolStart n fds) inputs).2 :=
    (workerPool n).run_induction (.start fds) (fun _ _ input hs => hs.step input) inputs
  revert h hjoined
  generalize ((workerPool n).run (poolStart n fds) inputs).1 = s
  generalize ((workerPool n).run (poolStart n fds) inputs).2 = trace
  intro hjoined h
  exact h.drained hn hjoined

/-- Two workers, of which one has been created when `pthread_create` fails; and two that are handed
one connection. -/
theorem workers_stopped_two :
    let early : List (PoolInput 2) := .main .requested false :: .main .requested true ::
      List.replicate 10 (.main .requested false) ++ List.replicate 7 (.worker 0 true) ++
      List.replicate 2 (.main .requested false)
    let served : List (PoolInput 2) := List.replicate 3 (.main .requested false) ++
      List.replicate 8 (.main (.connfd 5) false) ++ List.replicate 9 (.worker 1 true) ++
      List.replicate 20 (.main .requested false) ++ List.replicate 9 (.worker 1 true) ++
      List.replicate 7 (.worker 0 true) ++ List.replicate 4 (.main .requested false)
    let run := (workerPool 2).run (poolStart 2 fun _ => 0)
    Drained (run early).1 (run early).2 ∧ Drained (run served).1 (run served).2 ∧
      (run early).1.created = 1 ∧ handles (run served).2 = [(1, 5)] := by
  intro early served run
  have hearly : (run early).1.main = .joined ∧ (run early).1.created = 1 := by decide +kernel
  have hserved : (run served).1.main = .joined ∧ handles (run served).2 = [(1, 5)] := by
    decide +kernel
  exact ⟨workers_stopped (by decide) _ early hearly.1,
    workers_stopped (by decide) _ served hserved.1, hearly.2, hserved.2⟩

end StockServer
