import Mathlib.Data.Fintype.Option
import StockServer.PoolProgress

set_option relaxedAutoImplicit false
set_option autoImplicit false

/-!
# Service of the accepted connections

The worker pool while the accept loop goes on, and after.  In every reachable state the workers
have taken the connections in the order in which they were accepted, no connection has been handled
twice, and at most 65 wait for a worker, however many there are.  And no connection waits for ever,
whatever else is accepted and whatever the workers are busy with.

## Main definitions

* `WorkerPool.serviceLeft` — a bound on the actions that are left until `K` descriptors have been
  taken.
* `PassedOn` — a worker has passed on what it has of the first `K` descriptors taken.

## Main results

* `accepted_in_order` — **connections are taken in the order of `accept`**, each handled at most
  once, and the backlog is bounded.
* `PoolInv.service_lowers`, `PoolInv.service_acts` — until `K` descriptors have been taken, every
  action lowers the bound, and some thread can act.
* `PoolInv.serves` — a worker with a connection in its hands passes it on.
* `accepted_served` — **every accepted connection is served**.
-/

namespace StockServer

variable {n : ℕ} {s : WorkerPool n} {trace : List (PoolEvent n)}

/-! ## Order and backlog -/

/-- The workers take the connections in the order in which they were accepted, and then pills. -/
theorem PoolInv.prefix_takes (h : PoolInv s trace) : (takes trace).map Prod.snd <+:
    acceptedFds trace ++ List.replicate (s.main.pills s.created) stockQueueStop := by
  rw [h.taken, ← h.main.stored]
  exact h.queue.prefix_taken.trans (List.prefix_append ..)

/-- The connections that can be accepted before `K` descriptors have been taken. -/
def roomFor (K : ℕ) (trace : List (PoolEvent n)) : ℕ :=
  K + stockQueueSize + 1 - (acceptedFds trace).length

/-- The actions that are left of the main thread with room for so many connections, and eight for
every item that it can still post. -/
def PoolMain.serviceLeft (n room created : ℕ) (pc : QueuePc) : PoolMain → ℕ
  | .creating => 16 * room + 17 * n + 4
  | .accepting => 16 * room + 17 * n + 3
  | .inserting _ => 16 * room + 17 * n + 11 + pc.insertLeft
  | main => main.left created pc + 8 * main.unposted created

/-- A bound on the actions that are left until `K` descriptors have been taken. -/
def WorkerPool.serviceLeft (s : WorkerPool n) (K : ℕ) (trace : List (PoolEvent n)) : ℕ :=
  s.main.serviceLeft n (roomFor K trace) s.created (s.threads.pc none) + s.workersLeft

/-- Once `stop_workers` has been called the bound is that of the shutdown. -/
theorem WorkerPool.serviceLeft_of_stopping (hstop : s.main.Stopping) (K : ℕ)
    (trace : List (PoolEvent n)) : s.serviceLeft K trace = s.left := by
  rw [WorkerPool.serviceLeft, WorkerPool.left]
  cases hmain : s.main with
  | creating | accepting | inserting fd => rw [hmain] at hstop; exact hstop.elim
  | stopping i | pushing i | joining i | joined => simp only [PoolMain.serviceLeft]; omega

/-- An action of the main thread. -/
theorem PoolInv.service_main_lowers (h : PoolInv s trace) {K : ℕ}
    (haccepted : K ≤ (acceptedFds trace).length) (htaken : (takes trace).length < K)
    (loop : AcceptLoop) (createFails : Bool) :
    let next := poolMainStep s loop createFails
    next = (s, []) ∨ next.1.serviceLeft K (trace ++ next.2) < s.serviceLeft K trace := by
  intro next
  by_cases hstop : s.main.Stopping
  · refine (h.main_lowers hstop loop createFails).imp_right fun hlt => ?_
    have hstop' : next.1.main.Stopping := hstop.step (.main loop createFails)
    rwa [WorkerPool.serviceLeft_of_stopping hstop', WorkerPool.serviceLeft_of_stopping hstop]
  have hcreated := h.main.created_le
  have hcalling := h.main.calling
  rw [PoolMain.Calling] at hcalling
  simp only [next, poolMainStep]
  cases hmain : s.main with
  | stopping i | pushing i | joining i | joined => exact absurd (hmain ▸ trivial) hstop
  | creating =>
    have hall : s.created = n := by
      refine h.main.full.resolve_right fun hnone => ?_
      rw [hnone.1, List.length_nil] at haccepted
      omega
    rw [if_pos hall]
    refine .inr ?_
    simp only [WorkerPool.serviceLeft, WorkerPool.workersLeft, PoolMain.serviceLeft, hmain,
      List.append_nil]
    omega
  | accepting =>
    rw [hmain] at hcalling
    have hout : s.threads.pc none = .out := hcalling
    cases loop with
    | interrupted => exact .inl rfl
    | requested =>
      refine .inr ?_
      simp only [WorkerPool.serviceLeft, WorkerPool.workersLeft, PoolMain.serviceLeft, hmain,
        PoolMain.left, PoolMain.unposted]
      omega
    | connfd fd =>
      refine .inr ?_
      dsimp only
      split_ifs with hneg
      · simp only [WorkerPool.serviceLeft, WorkerPool.workersLeft, PoolMain.serviceLeft, hmain,
          PoolMain.left, PoolMain.unposted]
        omega
      · -- a connection is accepted, so it has room
        have hstored := congrArg List.length h.main.stored
        have hslots := h.queue.counts.slots
        rw [← h.taken, List.length_map] at hslots
        simp only [hmain, PoolMain.toStore, PoolMain.call, Option.elim_none, List.append_nil,
          PoolMain.pills, List.replicate_zero] at hstored
        have hroom : roomFor K (trace ++ [PoolEvent.accepted fd]) + 1 = roomFor K trace := by
          have hone : (acceptedFds (trace ++ [PoolEvent.accepted fd])).length =
              (acceptedFds trace).length + 1 := by simp [acceptedFds]
          rw [roomFor, roomFor, hone]
          omega
        simp only [WorkerPool.serviceLeft, WorkerPool.workersLeft, PoolMain.serviceLeft, hmain,
          hout, QueuePc.insertLeft]
        omega
  | inserting fd =>
    rw [hmain] at hcalling
    have hinserts : (s.threads.pc none).Inserts fd := hcalling
    have hothers : ∀ w : Fin n, (threadStep s.threads (none, .insert fd)).1.pc (some w) =
        s.threads.pc (some w) := fun w => pc_threadStep (by simp) _
    have hroom : roomFor K (trace ++ (s.act none (.insert fd)).2) = roomFor K trace := by
      have hnone := (trace_queue (n := n) none (threadStep s.threads (none, .insert fd)).2).1
      rw [roomFor, acceptedFds_append, WorkerPool.act, hnone, List.append_nil, roomFor]
    rcases insert_progress hinserts with ⟨hpc, hblocked⟩ | ⟨hpc, hout, hleft, hitems⟩ |
      ⟨hpc, hleft, hitems⟩
    · refine .inl ?_
      simp only [s.act_blocked hpc hblocked, hpc, ↓reduceIte]
    · have hout' : (s.act none (.insert fd)).1.threads.pc none = .out := hout
      refine .inr ?_
      simp only [hout', ↓reduceIte, WorkerPool.serviceLeft, WorkerPool.workersLeft, hroom,
        PoolMain.serviceLeft, hmain]
      simp only [WorkerPool.act, hothers, hitems, hleft]
      omega
    · have hpc' : (s.act none (.insert fd)).1.threads.pc none ≠ .out := hpc
      refine .inr ?_
      simp only [hpc', ↓reduceIte, WorkerPool.serviceLeft, WorkerPool.workersLeft, hroom]
      simp only [WorkerPool.act, hothers, hitems, PoolMain.serviceLeft, hmain]
      omega

/-- A worker shows no connection accepted. -/
theorem acceptedFds_workerStep (s : WorkerPool n) (w : Fin n) (returns : Bool) :
    acceptedFds (poolWorkerStep s w returns).2 = [] := by
  have hnone : acceptedFds (s.act (some w) .remove).2 = [] := (trace_queue (some w) _).1
  unfold poolWorkerStep
  by_cases hcreated : w.val < s.created
  · rw [if_pos hcreated]
    cases s.worker w with
    | removing =>
      dsimp only
      split
      · split_ifs
        · exact hnone
        · rw [acceptedFds_append, hnone]
          rfl
      · exact hnone
    | handling fd => cases returns <;> rfl
    | returned => rfl
  · rw [if_neg hcreated]
    rfl

/-- **Every action lowers the bound** or takes descriptor number `K`. -/
theorem PoolInv.service_lowers (h : PoolInv s trace) {K : ℕ}
    (haccepted : K ≤ (acceptedFds trace).length) (htaken : (takes trace).length < K)
    (input : PoolInput n) : poolStep s input = (s, []) ∨
      (poolStep s input).1.serviceLeft K (trace ++ (poolStep s input).2) <
        s.serviceLeft K trace := by
  cases input with
  | main loop createFails => exact h.service_main_lowers haccepted htaken loop createFails
  | worker w returns =>
    obtain ⟨hmain, hcreated, hpc⟩ := poolWorkerStep_frame s w returns
    refine (h.worker_lowers w returns).imp_right fun hlt => ?_
    change (poolWorkerStep s w returns).1.serviceLeft K
      (trace ++ (poolWorkerStep s w returns).2) < _
    rw [WorkerPool.serviceLeft, WorkerPool.serviceLeft, hmain, hcreated, hpc, roomFor,
      acceptedFds_append, acceptedFds_workerStep, List.append_nil, roomFor]
    omega

/-! ## Some thread can act -/

/-- No worker returns before a pill has been stored. -/
theorem PoolInv.not_returned (h : PoolInv s trace) (hpills : s.main.pills s.created = 0)
    (w : Fin n) : s.worker w ≠ .returned := by
  intro hreturned
  have htaken := (h.worker w).taken
  rw [hreturned] at htaken
  have hmem : stockQueueStop ∈ ofWorker w (takes trace) := by
    rw [htaken]
    exact List.mem_append_right _ (List.mem_singleton_self _)
  obtain ⟨p, hp, hp'⟩ := List.mem_map.mp hmem
  have hmem' : stockQueueStop ∈ (takes trace).map Prod.snd :=
    List.mem_map.mpr ⟨p, List.mem_of_mem_filter hp, hp'⟩
  have haccepted := h.prefix_takes.subset hmem'
  rw [hpills, List.replicate_zero, List.append_nil] at haccepted
  exact stop_notMem h.main.nonneg haccepted

/-- **Some thread can act** until descriptor number `K` has been taken.

**Proof sketch.** While the accept loop goes on, every worker waits for an item if it cannot act,
and there is at least one.  So the queue is empty, the main thread is in no insertion, and all that
has been accepted has been taken. -/
theorem PoolInv.service_acts (h : PoolInv s trace) (hn : 0 < n) {K : ℕ}
    (haccepted : K ≤ (acceptedFds trace).length) (htaken : (takes trace).length < K) :
    ∃ thread, ∀ input, PoolTurn thread input → (poolStep s input).1 ≠ s := by
  by_cases hstop : s.main.Stopping
  · refine h.acts hstop fun hjoined => ?_
    have hall := congrArg List.length (h.drained hn hjoined).taken
    rw [List.length_map, List.length_append] at hall
    omega
  by_contra hnone
  push Not at hnone
  obtain ⟨input, hturn, hstuck⟩ := hnone none
  cases input with
  | worker => exact hturn.elim
  | main loop createFails =>
    have hpills : s.main.pills s.created = 0 := by
      cases hmain : s.main with
      | stopping i | pushing i | joining i | joined => exact absurd (hmain ▸ trivial) hstop
      | creating | accepting | inserting fd => rfl
    have hcreated : s.created = n := by
      refine h.main.full.resolve_right fun hnone => ?_
      rw [hnone.1, List.length_nil] at haccepted
      omega
    have hworker : ∀ w : Fin n, s.worker w = .removing ∧ s.threads.pc (some w) ≠ .out ∧
        queueStep s.threads.queue (s.threads.pc (some w)) = none := by
      intro w
      obtain ⟨input, hturn, hstuck⟩ := hnone (some w)
      cases input with
      | main => exact hturn.elim
      | worker v returns =>
        obtain ⟨rfl, rfl⟩ := hturn
        have hlt : v.val < s.created := by
          rw [hcreated]
          exact v.isLt
        exact (h.worker_stuck hlt hstuck).resolve_left (h.not_returned hpills v)
    have hcalling := h.main.calling
    rw [PoolMain.Calling] at hcalling
    have hmain : s.threads.pc none = .out ∧ s.main.toStore (s.threads.pc none) = [] ∨
        ∃ fd, (s.threads.pc none).Inserts fd ∧ s.threads.pc none ≠ .out ∧
          queueStep s.threads.queue (s.threads.pc none) = none := by
      change (poolMainStep s loop createFails).1 = s at hstuck
      unfold poolMainStep at hstuck
      cases hmain : s.main with
      | stopping i | pushing i | joining i | joined => exact absurd (hmain ▸ trivial) hstop
      | creating =>
        rw [hmain] at hstuck
        have hmoved := congrArg WorkerPool.main hstuck
        rw [hmain, if_pos hcreated] at hmoved
        cases hmoved
      | accepting =>
        rw [hmain] at hcalling
        exact .inl ⟨hcalling, rfl⟩
      | inserting fd =>
        rw [hmain] at hcalling hstuck
        have hinserts : (s.threads.pc none).Inserts fd := hcalling
        refine .inr ⟨fd, hinserts, insert_stuck hinserts ?_⟩
        dsimp only at hstuck
        split_ifs at hstuck <;> exact congrArg WorkerPool.threads hstuck
    have hblocked : ∀ thread, queueStep s.threads.queue (s.threads.pc thread) = none := by
      intro thread
      cases thread with
      | some w => exact (hworker w).2.2
      | none =>
        rcases hmain with ⟨hout, -⟩ | ⟨fd, -, -, hblocked⟩
        · rw [hout]
          rfl
        · exact hblocked
    obtain ⟨hremoving, hpc, -⟩ := hworker ⟨0, hn⟩
    have hremoves := (h.worker ⟨0, hn⟩).removing hremoving
    rcases h.queue.counts.standstill hblocked with hall | ⟨hin, -⟩ | ⟨hin, heq⟩
    · exact hpc (hall _)
    · rcases hin (some ⟨0, hn⟩) with hout | ⟨fd, hfd⟩
      · exact hpc hout
      · rw [hfd] at hremoves
        exact hremoves
    · rcases hmain with ⟨-, hnil⟩ | ⟨fd, hinserts, hpcm, -⟩
      · -- the main thread is in `accept`
        have hstored := congrArg List.length h.main.stored
        rw [hnil, hpills, List.replicate_zero, List.append_nil, List.append_nil, heq, ← h.taken,
          List.length_map] at hstored
        omega
      · rw [(hin none).resolve_left hpcm] at hinserts
        exact hinserts

/-! ## The hands of a worker -/

/-- The worker has passed to `handle_client` what it has of the first `K` descriptors taken. -/
def PassedOn (K : ℕ) (w : Fin n) (trace : List (PoolEvent n)) : Prop :=
  ofWorker w ((takes trace).take K) <+: ofWorker w (handles trace)

/-- What has been served stays served. -/
theorem PassedOn.append {K : ℕ} {w : Fin n} (hpassed : PassedOn K w trace)
    (htaken : K ≤ (takes trace).length) (shown : List (PoolEvent n)) :
    PassedOn K w (trace ++ shown) := by
  rw [PassedOn, takes_append, List.take_append_of_le_length htaken, handles_append, ofWorker_append]
  exact hpassed.trans (List.prefix_append ..)

/-- The first descriptors taken are the first accepted. -/
theorem PoolInv.take_takes (h : PoolInv s trace) {K : ℕ}
    (haccepted : K ≤ (acceptedFds trace).length) (htaken : K ≤ (takes trace).length) :
    ((takes trace).take K).map Prod.snd = (acceptedFds trace).take K := by
  obtain ⟨left, hleft⟩ := h.prefix_takes
  have hfront := congrArg (List.take K) hleft
  rw [List.take_append_of_le_length (by rwa [List.length_map]),
    List.take_append_of_le_length haccepted] at hfront
  rw [List.map_take, hfront]

/-- A worker that has at most a pill in its hands has passed on all connections. -/
theorem PoolInv.passedOn (h : PoolInv s trace) {K : ℕ} {w : Fin n}
    (haccepted : K ≤ (acceptedFds trace).length) (htaken : K ≤ (takes trace).length)
    (hpending : (s.worker w).pending (s.threads.pc (some w)) = [] ∨
      (s.worker w).pending (s.threads.pc (some w)) = [stockQueueStop]) : PassedOn K w trace := by
  have hfront : ofWorker w ((takes trace).take K) <+:
      ofWorker w (handles trace) ++ (s.worker w).pending (s.threads.pc (some w)) := by
    rw [← (h.worker w).taken]
    exact ((List.take_prefix K (takes trace)).filter _).map _
  rcases hpending with hnone | hpill
  · rwa [hnone, List.append_nil] at hfront
  · rw [hpill] at hfront
    refine (List.prefix_concat_iff.mp hfront).resolve_left fun hall => ?_
    -- a pill is no connection
    have hmem : stockQueueStop ∈ ofWorker w ((takes trace).take K) := by
      rw [hall]
      exact List.mem_append_right _ (List.mem_singleton_self _)
    obtain ⟨p, hp, hp'⟩ := List.mem_map.mp hmem
    have hmem' : stockQueueStop ∈ ((takes trace).take K).map Prod.snd :=
      List.mem_map.mpr ⟨p, List.mem_of_mem_filter hp, hp'⟩
    rw [h.take_takes haccepted htaken] at hmem'
    exact stop_notMem h.main.nonneg (List.mem_of_mem_take hmem')

/-- A worker that has not passed on a connection is at the end of its removal. -/
theorem PoolInv.in_hand (h : PoolInv s trace) {K : ℕ} {w : Fin n}
    (haccepted : K ≤ (acceptedFds trace).length) (htaken : K ≤ (takes trace).length)
    (hnot : ¬ PassedOn K w trace) : s.worker w = .removing ∧ w.val < s.created ∧
      ∃ fd, fd ≠ stockQueueStop ∧ (s.threads.pc (some w) = .removeUnlock fd ∨
        s.threads.pc (some w) = .removePost fd) := by
  have hpending := mt (h.passedOn (w := w) haccepted htaken) hnot
  rw [not_or] at hpending
  have hcreated : w.val < s.created := by
    by_contra hfresh
    obtain ⟨hremoving, hpc, -⟩ := (h.worker w).fresh (Nat.le_of_not_lt hfresh)
    rw [hremoving, hpc] at hpending
    exact hpending.1 rfl
  cases hworker : s.worker w with
  | handling fd => exact absurd (by rw [hworker]; rfl) hpending.1
  | returned => exact absurd (by rw [hworker]; rfl) hpending.2
  | removing =>
    refine ⟨rfl, hcreated, ?_⟩
    rw [hworker, PoolWorker.pending] at hpending
    cases hpc : s.threads.pc (some w) with
    | removeUnlock fd =>
      rw [hpc] at hpending
      exact ⟨fd, fun heq => hpending.2 (by rw [heq]; rfl), .inl rfl⟩
    | removePost fd =>
      rw [hpc] at hpending
      exact ⟨fd, fun heq => hpending.2 (by rw [heq]; rfl), .inr rfl⟩
    | out | insertSlots | insertMutex | insertStore | insertAdvance | insertUnlock | insertPost
    | removeItems | removeMutex | removeLoad | removeAdvance =>
      rw [hpc] at hpending
      exact absurd rfl hpending.1

/-- A step moves no worker but its own. -/
theorem pc_poolStep {w : Fin n} {input : PoolInput n}
    (hother : ∀ returns, input ≠ .worker w returns) :
    (poolStep s input).1.threads.pc (some w) = s.threads.pc (some w) := by
  have hmain : ∀ call, (threadStep s.threads (none, call)).1.pc (some w) =
      s.threads.pc (some w) := fun call => pc_threadStep (by simp) _
  cases input with
  | main loop createFails =>
    change (poolMainStep s loop createFails).1.threads.pc (some w) = _
    unfold poolMainStep
    cases s.main with
    | creating => dsimp only; split_ifs <;> rfl
    | accepting => cases loop <;> dsimp only; split_ifs <;> rfl
    | inserting fd => dsimp only; split_ifs <;> exact hmain _
    | pushing i => dsimp only; split_ifs <;> exact hmain _
    | stopping i => rfl
    | joining i => dsimp only; split_ifs <;> rfl
    | joined => rfl
  | worker v returns =>
    have hne : some w ≠ some v := fun heq => hother returns (by rw [Option.some_inj.mp heq])
    have hpc : (threadStep s.threads (some v, .remove)).1.pc (some w) = s.threads.pc (some w) :=
      pc_threadStep hne _
    change (poolWorkerStep s v returns).1.threads.pc (some w) = _
    unfold poolWorkerStep
    by_cases hcreated : v.val < s.created
    · rw [if_pos hcreated]
      cases s.worker v with
      | removing =>
        dsimp only
        split
        · split_ifs <;> exact hpc
        · exact hpc
      | handling fd => cases returns <;> rfl
      | returned => rfl
    · rw [if_neg hcreated]

/-- **A worker with a connection in its hands passes it on** at its second turn. -/
theorem PoolInv.serves (h : PoolInv s trace) {K : ℕ} {w : Fin n}
    (haccepted : K ≤ (acceptedFds trace).length) (htaken : K ≤ (takes trace).length)
    (hnot : ¬ PassedOn K w trace) (returns : Bool) :
    let next := poolStep s (.worker w returns)
    PassedOn K w (trace ++ next.2) ∨
      (next.1.threads.pc (some w)).removeLeft < (s.threads.pc (some w)).removeLeft := by
  intro next
  obtain ⟨hworker, hcreated, fd, hstop, hpc | hpc⟩ := h.in_hand haccepted htaken hnot
  · refine .inr ?_
    have hnext : next.1.threads.pc (some w) = .removePost fd := by
      simp only [next, poolStep, poolWorkerStep, hcreated, ↓reduceIte, hworker, hpc,
        WorkerPool.act, threadStep, queueStep, reduceCtorEq, Function.update_self]
    rw [hnext, hpc]
    exact Nat.lt_succ_self 3
  · refine .inl ((h.step (.worker w returns)).passedOn ?_ ?_ (.inl ?_))
    · rw [acceptedFds_append, List.length_append]
      exact haccepted.trans (Nat.le_add_right ..)
    · rw [takes_append, List.length_append]
      exact htaken.trans (Nat.le_add_right ..)
    · have hnext : next.1.worker w = .handling fd := by
        simp only [next, poolStep, poolWorkerStep, hcreated, ↓reduceIte, hworker, hpc, hstop,
          Function.update_self]
      change (next.1.worker w).pending _ = []
      rw [hnext]
      rfl

/-! ## Every accepted connection is served -/

/-- The pool, with its trace, once `K` connections have been accepted. -/
def PoolAccepted (K : ℕ) (x : WorkerPool n × List (PoolEvent n)) : Prop :=
  PoolInv x.1 x.2 ∧ K ≤ (acceptedFds x.2).length

/-- A step accepts no connection back. -/
theorem PoolAccepted.step {K : ℕ} {x : WorkerPool n × List (PoolEvent n)} (h : PoolAccepted K x)
    (input : PoolInput n) : PoolAccepted K ((workerPool n).recorded.step x input).1 := by
  refine ⟨h.1.step input, ?_⟩
  change K ≤ (acceptedFds (x.2 ++ _)).length
  rw [acceptedFds_append, List.length_append]
  exact h.2.trans (Nat.le_add_right ..)

/-- What has been taken stays taken. -/
theorem length_takes_step {K : ℕ} {x : WorkerPool n × List (PoolEvent n)}
    (htaken : K ≤ (takes x.2).length) (input : PoolInput n) :
    K ≤ (takes ((workerPool n).recorded.step x input).1.2).length := by
  change K ≤ (takes (x.2 ++ _)).length
  rw [takes_append, List.length_append]
  exact htaken.trans (Nat.le_add_right ..)

/-- **Every accepted connection is taken.** -/
theorem leadsTo_taken (hn : 0 < n) (K : ℕ) : (workerPool n).recorded.LeadsTo PoolTurn
    (PoolAccepted K) fun x => K ≤ (takes x.2).length := by
  refine .of_actions (fun x => x.1.serviceLeft K x.2) (fun x input h => h.step input)
    (fun x input h hnot => ?_) fun x h hnot => ?_
  · rcases h.1.service_lowers h.2 (Nat.lt_of_not_le hnot) input with hsame | hlt
    · refine .inl ?_
      change ((poolStep x.1 input).1, x.2 ++ (poolStep x.1 input).2) = x
      rw [hsame, List.append_nil]
    · exact .inr (.inr hlt)
  · obtain ⟨thread, hacts⟩ := h.1.service_acts hn h.2 (Nat.lt_of_not_le hnot)
    refine ⟨thread, fun input hturn hsame => hacts input hturn ?_⟩
    have hstate := congrArg Prod.fst hsame
    exact hstate

/-- **A worker passes on what it has taken.** -/
theorem leadsTo_passedOn (K : ℕ) (w : Fin n) : (workerPool n).recorded.LeadsTo PoolTurn
    (fun x => (PoolAccepted K x ∧ K ≤ (takes x.2).length) ∧ ¬ PassedOn K w x.2)
    fun x => PassedOn K w x.2 := by
  refine .of_agent (fun x => (x.1.threads.pc (some w)).removeLeft) (some w)
    (fun x input h => ?_) fun x input h hturn => ?_
  · obtain ⟨⟨hacc, htaken⟩, hnot⟩ := h
    by_cases hgoal : PassedOn K w ((workerPool n).recorded.step x input).1.2
    · exact .inl hgoal
    refine .inr ⟨⟨⟨hacc.step input, length_takes_step htaken input⟩, hgoal⟩, ?_⟩
    by_cases hown : ∃ returns, input = .worker w returns
    · obtain ⟨returns, rfl⟩ := hown
      exact ((hacc.1.serves hacc.2 htaken hnot returns).resolve_left hgoal).le
    · rw [not_exists] at hown
      exact le_of_eq (congrArg QueuePc.removeLeft (pc_poolStep hown))
  · obtain ⟨⟨hacc, htaken⟩, hnot⟩ := h
    cases input with
    | main => exact hturn.elim
    | worker v returns =>
      obtain ⟨rfl, -⟩ := hturn
      exact hacc.1.serves hacc.2 htaken hnot returns

/-- **Every accepted connection is served.**  For any number of workers, in every run of the pool
and under every schedule that gives each thread turns again and again, at which `handle_client`
returns: at last the connections accepted by then have been taken from the queue, before any other
and in the order of `accept`, and every worker has passed those that it took to `handle_client`, in
that order and before any other.  New connections may go on to arrive.

**Proof sketch.** As long as they have not all been taken, only a bounded number of connections can
be accepted, so every action lowers a bound on the actions left.  Then every worker has at most one
of them in its hands. -/
theorem accepted_served (hn : 0 < n) (fds : ℕ → Int32) (inputs : List (PoolInput n))
    (σ : ℕ → PoolInput n) (hfair : Machine.Fair PoolTurn σ) :
    ∃ k, ∀ m, k ≤ m →
      let trace := ((workerPool n).run (poolStart n fds) (inputs ++ (List.range m).map σ)).2
      ∃ served, served <+: takes trace ∧ served.map Prod.snd =
          acceptedFds ((workerPool n).run (poolStart n fds) inputs).2 ∧
        ∀ w, ofWorker w served <+: ofWorker w (handles trace) := by
  set start := (workerPool n).run (poolStart n fds) inputs with hstart
  set K := (acceptedFds start.2).length with hK
  set after := fun m => (workerPool n).recorded.after start σ m with hafter
  have hrun : ∀ m, after m = (workerPool n).run (poolStart n fds)
      (inputs ++ (List.range m).map σ) := by
    intro m
    rw [Machine.run_append, ← hstart]
    exact (workerPool n).recorded_after start.1 start.2 σ m
  have hinv : ∀ m, PoolAccepted K (after m) := by
    intro m
    induction m with
    | zero =>
      exact ⟨(workerPool n).run_induction (.start fds) (fun _ _ input hs => hs.step input) inputs,
        le_rfl⟩
    | succ m ih => exact ih.step (σ m)
  -- they are taken
  obtain ⟨k, hk⟩ := leadsTo_taken hn K start σ hfair (hinv 0)
  have htaken : ∀ m, k ≤ m → K ≤ (takes (after m).2).length := by
    intro m hm
    induction m, hm using Nat.le_induction with
    | base => exact hk
    | succ m _ ih => exact length_takes_step ih (σ m)
  -- they are passed on, by each worker
  have hworker : ∀ w : Fin n, ∃ kw, ∀ m, k + kw ≤ m → PassedOn K w (after m).2 := by
    intro w
    have hone : ∃ kw, PassedOn K w (after (k + kw)).2 := by
      by_cases hgoal : PassedOn K w (after k).2
      · exact ⟨0, hgoal⟩
      obtain ⟨kw, hkw⟩ := leadsTo_passedOn K w (after k) _ (hfair.shift k)
        ⟨⟨hinv k, htaken k le_rfl⟩, hgoal⟩
      refine ⟨kw, ?_⟩
      rw [hafter]
      dsimp only
      rw [Machine.after_add]
      exact hkw
    obtain ⟨kw, hkw⟩ := hone
    refine ⟨kw, fun m hm => ?_⟩
    induction m, hm using Nat.le_induction with
    | base => exact hkw
    | succ m hm ih => exact ih.append (htaken m (by omega)) _
  choose kw hkw using hworker
  refine ⟨k + Finset.univ.sup kw, fun m hm => ?_⟩
  have hbefore : k ≤ m := by omega
  have haccepted : (acceptedFds (after m).2).take K = acceptedFds start.2 := by
    have hsplit := congrArg Prod.snd
      ((workerPool n).recorded_after start.1 start.2 σ m)
    change (after m).2 = start.2 ++ _ at hsplit
    rw [hsplit, acceptedFds_append, hK, List.take_left]
  rw [← hrun m]
  refine ⟨(takes (after m).2).take K, List.take_prefix .., ?_, fun w => ?_⟩
  · rw [(hinv m).1.take_takes (hinv m).2 (htaken m hbefore), haccepted]
  · have hle : kw w ≤ Finset.univ.sup kw := Finset.le_sup (Finset.mem_univ w)
    exact hkw w m (by omega)

/-- Two workers that take turns with a main thread to which ever new connections arrive. -/
theorem accepted_served_two :
    let inputs : List (PoolInput 2) := List.replicate 4 (.main (.connfd 5) false)
    acceptedFds ((workerPool 2).run (poolStart 2 fun _ => 0) inputs).2 = [5] ∧
      ∃ k, ∀ m, k ≤ m →
        let trace := ((workerPool 2).run (poolStart 2 fun _ => 0)
          (inputs ++ (List.range m).map (rotation (.connfd 7)))).2
        ∃ served, served <+: takes trace ∧ served.map Prod.snd =
            acceptedFds ((workerPool 2).run (poolStart 2 fun _ => 0) inputs).2 ∧
          ∀ w, ofWorker w served <+: ofWorker w (handles trace) :=
  ⟨by decide +kernel, accepted_served (by decide) (fun _ => 0) _ _ (fair_rotation _)⟩

end StockServer
